import LiquidTemplate.Proofs.Lexeme.Grammar

/-!
# Bodies and what encloses them

A comment and a raw element are a body in an enclosure. Whether one is read depends on the body in
one point: its first end must be that of the enclosure (`Enclosure.readBefore_lexeme`).
-/

namespace LiquidTemplate

/-- What stands around a body that is kept as it is. -/
inductive Enclosure where
  | comment
  /-- The start tag, the name in the end tag, and what stands between that and `>`. -/
  | element (head : Head) (closeName closeRest : Text)
deriving DecidableEq, Repr

namespace Enclosure

def opening : Enclosure → Text
  | comment => Delimiter.comment.opening
  | element head _ _ => head.chars

def closing : Enclosure → Text
  | comment => Delimiter.comment.closing
  | element _ closeName closeRest => Lexeme.closeChars closeName closeRest

/-- The construct with this body. -/
def lexeme (body : Text) : Enclosure → Lexeme
  | comment => .comment body
  | element head closeName closeRest => .rawElement head body closeName closeRest

variable {e : Enclosure} {body body' rest : Text}

theorem chars_lexeme (e : Enclosure) (body : Text) :
    (e.lexeme body).chars = e.opening ++ (body ++ e.closing) := by
  cases e <;>
    simp [lexeme, Lexeme.chars, opening, closing, Lexeme.closeChars, Delimiter.enclose]

theorem isConstruct_lexeme (e : Enclosure) (body : Text) :
    (e.lexeme body).isConstruct = true := by
  cases e <;> rfl

/-! ## Where a body ends -/

/-- An end of the body begins here: `-->`, or `</` and the name of the element in any case, with a
`>` or an ASCII blank behind it. -/
def EndsAt (t : Text) : Enclosure → Prop
  | comment => Delimiter.comment.closing <+: t
  | element head _ _ => ∃ written rest, t = ['<', '/'] ++ written ++ rest ∧
      Keyword.fold written = Keyword.fold head.name.chars ∧ Raw.endsName rest = true

instance (e : Enclosure) (t : Text) : Decidable (e.EndsAt t) :=
  match e with
  | comment => inferInstanceAs (Decidable (Delimiter.comment.closing <+: t))
  | element head _ _ =>
    decidable_of_iff ((Raw.endTagOf? head.name.chars t).isSome = true) (by
      rw [Option.isSome_iff_exists, Prod.exists]
      exact exists₂_congr fun _ _ => Raw.endTagOf?_eq_some_iff)

/-- The first end in `body ++ rest` begins behind `body`. -/
def EndsBehind (body rest : Text) (e : Enclosure) : Prop :=
  e.EndsAt rest ∧ ∀ i < body.length, ¬ e.EndsAt (body.drop i ++ rest)

instance (body rest : Text) (e : Enclosure) : Decidable (e.EndsBehind body rest) :=
  inferInstanceAs (Decidable (_ ∧ _))

theorem endsBehind_iff : e.EndsBehind body rest ↔
    e.EndsAt rest ∧ ∀ p q, body = p ++ q → q ≠ [] → ¬ e.EndsAt (q ++ rest) :=
  and_congr_right fun _ => (Text.forall_suffix_iff (P := fun q => ¬ e.EndsAt (q ++ rest))).symm

theorem endsBehind_nil (h : e.EndsAt rest) : e.EndsBehind [] rest := ⟨h, nofun⟩

/-! ## Reading -/

/-- It is clear in front of the body that a construct begins. -/
theorem startsConstruct_opening (h : (e.lexeme body).ReadBefore rest) :
    Lexeme.startsConstruct e.opening = true := by
  cases e with
  | comment => rfl
  | element head closeName closeRest =>
    obtain ⟨hs, -⟩ := Head.read_eq_ok_iff.2 ⟨rfl, h.1.of_readBefore []⟩
    rw [List.append_nil] at hs
    exact Lexeme.startsConstruct_iff.2 ⟨.startTag, _, rfl, hs⟩

/-- Of an element, the name that its head is read with is the one in its end tags. -/
theorem endsAt_element_iff {head : Head} {closeName closeRest name t : Text}
    (h : head.rawName? = some name) :
    (element head closeName closeRest).EndsAt t ↔ ∃ r, Raw.endTagOf? name t = some r := by
  rw [Prod.exists]
  refine exists₂_congr fun _ _ => ?_
  rw [Raw.endTagOf?_eq_some_iff, (Head.isRawElement_of_rawName? h).1]
  rfl

/-- Where a construct is read with one body, it is read with another one if and only if that has its
first end where the construct has it. -/
theorem readBefore_lexeme (h : (e.lexeme body).ReadBefore rest) :
    (e.lexeme body').ReadBefore rest ↔ e.EndsBehind body' (e.closing ++ rest) := by
  cases e with
  | comment =>
    have hsplit : (comment.lexeme body').ReadBefore rest ↔
        Text.splitFirst? Delimiter.comment.closing (body' ++ (comment.closing ++ rest)) =
          some (body', rest) := Iff.rfl
    rw [hsplit, Text.splitFirst?_eq_some_iff, endsBehind_iff]
    refine and_congr ⟨fun _ => ⟨rest, rfl⟩, fun _ => (List.append_assoc _ _ _).symm⟩ ?_
    simp only [List.append_assoc]
    rfl
  | element head closeName closeRest =>
    obtain ⟨hhead, name, hraw, he⟩ := h
    obtain ⟨after, hfirst, hgap⟩ := Raw.readElement?_eq_some_iff.1 he
    obtain ⟨suffix, hsuffix, hend, -⟩ := Text.firstSuffix?_eq_some_iff.1 hfirst
    obtain rfl := List.append_cancel_left hsuffix
    rw [endsBehind_iff]
    constructor
    · rintro ⟨-, name', hraw', he'⟩
      obtain rfl : name = name' := Option.some.inj (hraw.symm.trans hraw')
      obtain ⟨_, hfirst', -⟩ := Raw.readElement?_eq_some_iff.1 he'
      obtain ⟨suffix', hsuffix', -, hfail⟩ := Text.firstSuffix?_eq_some_iff.1 hfirst'
      obtain rfl := List.append_cancel_left hsuffix'
      refine ⟨(endsAt_element_iff hraw).2 ⟨_, hend⟩, fun p q hpq hq hends => ?_⟩
      obtain ⟨r, hr⟩ := (endsAt_element_iff hraw).1 hends
      exact Option.some_ne_none r (hr.symm.trans (hfail p q hpq hq))
    · rintro ⟨-, hfail⟩
      refine ⟨hhead.of_readBefore _, name, hraw,
        Raw.readElement?_eq_some_iff.2 ⟨after, ?_, hgap⟩⟩
      refine Text.firstSuffix?_eq_some_iff.2 ⟨_, rfl, hend, fun p q hpq hq => ?_⟩
      exact Option.eq_none_iff_forall_ne_some.2 fun r hr =>
        hfail p q hpq hq ((endsAt_element_iff hraw).2 ⟨r, hr⟩)

end Enclosure

end LiquidTemplate
