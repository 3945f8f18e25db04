import LiquidTemplate.Proofs.Json.Chars
import LiquidTemplate.Proofs.Json.Objects

/-!
# The braces of a text

Reading a text from the left, a reader that knows strings from what stands outside them finds the
opening braces, and behind each it knows which brace is the innermost that is still open
(`Json.braces`). In the text of a value it finds the objects of the value in pre-order, each behind
the one in which it is nested (`Json.finds_chars`).
-/

namespace LiquidTemplate.Json

/-! ## The reader -/

mutual

/-- The opening braces outside strings, each as the text from it on, behind the innermost of those
that are open before it. `opened` are the ones that are open already, the innermost first. -/
def braces (opened : List Text) : Text → List (Option Text × Text)
  | [] => []
  | '"' :: rest => bracesBehindString opened rest
  | '\x7b' :: rest => (opened.head?, '\x7b' :: rest) :: braces (('\x7b' :: rest) :: opened) rest
  | '\x7d' :: rest => braces opened.tail rest
  | _ :: rest => braces opened rest

/-- The same for a text that begins inside a string. -/
def bracesBehindString (opened : List Text) : Text → List (Option Text × Text)
  | [] => []
  | '\\' :: _ :: rest => bracesBehindString opened rest
  | '"' :: rest => braces opened rest
  | _ :: rest => bracesBehindString opened rest

end

/-- A character that a reader outside strings passes over. -/
def isPlain (c : Char) : Bool := c ≠ '"' ∧ c ≠ '\x7b' ∧ c ≠ '\x7d'

variable {layout : Layout} {opened : List Text} {t rest : Text}

theorem braces_plain_append (ht : ∀ c ∈ t, isPlain c) :
    braces opened (t ++ rest) = braces opened rest := by
  induction t with
  | nil => rfl
  | cons c t ih =>
    obtain ⟨hc, ht⟩ := List.forall_mem_cons.1 ht
    simp only [isPlain, ne_eq, decide_eq_true_eq] at hc
    rw [List.cons_append, braces, ih ht]
    all_goals simp [hc]

theorem bracesBehindString_escape_append (c : Char) :
    bracesBehindString opened (escape c ++ rest) = bracesBehindString opened rest := by
  have hhex (n : Nat) : hexDigit n ≠ '\\' ∧ hexDigit n ≠ '"' := by
    have h : ∀ m < 16, Nat.digitChar m ≠ '\\' ∧ Nat.digitChar m ≠ '"' := by decide
    exact h (n % 16) (Nat.mod_lt _ (by decide))
  obtain ⟨d, h⟩ | h | ⟨h, hquote, hbackslash⟩ := escape_cases c <;> rw [h]
  · rfl
  · simp [bracesBehindString, hhex]
  · rw [List.singleton_append, bracesBehindString]
    all_goals simp [hquote, hbackslash]

/-- No brace in a string counts. -/
theorem braces_quote_append : braces opened (quote t ++ rest) = braces opened rest := by
  have hinside : bracesBehindString opened (t.flatMap escape ++ '"' :: rest) =
      braces opened rest := by
    induction t with
    | nil => rfl
    | cons c t ih => rw [List.flatMap_cons, List.append_assoc, bracesBehindString_escape_append, ih]
  rw [← hinside, quote]
  simp [braces]

theorem isPlain_of_mem_lineBreak {n : Nat} : ∀ c ∈ layout.lineBreak n, isPlain c := by
  intro c hc
  rcases eq_of_mem_lineBreak hc with rfl | rfl <;> rfl

theorem isPlain_of_mem_colon : ∀ c ∈ layout.colon, isPlain c := by
  cases layout <;> exact List.all_eq_true.1 rfl

theorem isPlain_of_isDigit {c : Char} (h : c.isDigit = true) : isPlain c := by
  have hne (d : Char) (hd : d.isDigit = false) : c ≠ d := by
    rintro rfl
    rw [hd] at h
    cases h
  simp [isPlain, hne]

/-! ## What the reader finds -/

/-- The text begins with the object that is written for this. -/
def Shows (layout : Layout) (t : Text) (x : Shown) : Prop :=
  ∃ v level rest, x.IsForm v ∧ t = chars layout level v ++ rest

/-- Going on from a text until another is left, the reader finds these objects: each where it is
written, and each behind the one that holds it. -/
def Finds (layout : Layout) (t rest : Text) (ts : List (Tree (Option Shown))) : Prop :=
  ∃ located : List (Tree (Text × Option Shown)), Tree.mapAll Prod.snd located = ts ∧
    (∀ y ∈ Tree.valuesAll located, ∀ x ∈ y.2, Shows layout y.1 x) ∧
    ∀ opened, braces opened t =
      Tree.listedAll opened.head? (Tree.mapAll Prod.fst located) ++ braces opened rest

namespace Finds

variable {u : Text} {ts us : List (Tree (Option Shown))}

theorem nothing (h : ∀ opened, braces opened t = braces opened rest) : Finds layout t rest [] :=
  ⟨[], rfl, List.forall_mem_nil _, h⟩

theorem append (ht : Finds layout t u ts) (hu : Finds layout u rest us) :
    Finds layout t rest (ts ++ us) := by
  obtain ⟨ls, rfl, hls, ht⟩ := ht
  obtain ⟨ms, rfl, hms, hu⟩ := hu
  refine ⟨ls ++ ms, Tree.mapAll_append _ ls ms, ?_, fun opened => ?_⟩
  · rw [Tree.valuesAll_append]
    exact List.forall_mem_append.2 ⟨hls, hms⟩
  · rw [ht, hu, Tree.mapAll_append, Tree.listedAll_append, List.append_assoc]

/-- What is found behind characters that the reader passes over. -/
theorem behind (h : ∀ opened, braces opened t = braces opened u) (hu : Finds layout u rest us) :
    Finds layout t rest us :=
  (nothing h).append hu

/-- What is found in front of characters that the reader passes over. -/
theorem before (hu : Finds layout t u us) (h : ∀ opened, braces opened u = braces opened rest) :
    Finds layout t rest us := by
  simpa using hu.append (nothing h)

/-- What stands between the braces of an object is nested in it. -/
theorem object {x : Option Shown} (hx : ∀ y ∈ x, Shows layout ('\x7b' :: t) y)
    (ht : Finds layout t ('\x7d' :: rest) ts) : Finds layout ('\x7b' :: t) rest [.node x ts] := by
  obtain ⟨ls, rfl, hls, ht⟩ := ht
  -- up to the closing brace this one is the innermost that is open, whatever is open around it
  refine ⟨[.node ('\x7b' :: t, x) ls], rfl, ?_, fun opened => ?_⟩
  · rw [Tree.valuesAll, Tree.values, Tree.valuesAll, List.append_nil]
    exact List.forall_mem_cons.2 ⟨hx, hls⟩
  · rw [braces, ht]
    simp [Tree.mapAll, Tree.map, Tree.listedAll, Tree.listed, braces]

end Finds

theorem braces_lineBreak_append {n : Nat} :
    braces opened (layout.lineBreak n ++ rest) = braces opened rest :=
  braces_plain_append isPlain_of_mem_lineBreak

/-- The reader passes over the name of a field and what is around it. -/
theorem braces_name_append {n : Nat} {name : String} :
    braces opened (layout.lineBreak n ++ (quote name.toList ++ (layout.colon ++ rest))) =
      braces opened rest := by
  rw [braces_lineBreak_append, braces_quote_append, braces_plain_append isPlain_of_mem_colon]

mutual

/-- In the text of a value the reader finds the objects of the value. -/
theorem finds_chars {role : Role} : ∀ {level : Nat} (v : Json) {rest : Text},
    Finds layout (chars layout level v ++ rest) rest (objects role v)
  | _, null, _ | _, bool true, _ | _, bool false, _ =>
    .nothing fun _ => braces_plain_append (List.all_eq_true.1 rfl)
  | _, number _, _ => .nothing fun _ => braces_plain_append fun c hc =>
      isPlain_of_isDigit (isDigit_of_mem_toDigits c hc)
  | _, string _, _ => .nothing fun _ => braces_quote_append
  | _, array [], _ => .nothing fun _ => rfl
  | level, array (item :: items), rest => by
    have hend (opened : List Text) :
        braces opened (layout.lineBreak level ++ ']' :: rest) = braces opened rest :=
      braces_lineBreak_append
    rw [array_append]
    exact .behind (fun _ => braces_lineBreak_append)
      (.append (finds_chars item) (.before (finds_charsItems items) hend))
  | level, object [], rest =>
    .object (t := '\x7d' :: rest) (fun _ hx => ⟨_, level, rest, isForm_of_shown? hx, rfl⟩)
      (.nothing fun _ => rfl)
  | level, object ((name, v) :: fields), rest => by
    have hshows : ∀ x ∈ shown? role ((name, v) :: fields),
        Shows layout (chars layout level (object ((name, v) :: fields)) ++ rest) x :=
      fun _ hx => ⟨_, level, rest, isForm_of_shown? hx, rfl⟩
    have hend (opened : List Text) :
        braces opened (layout.lineBreak level ++ '\x7d' :: rest) = braces opened ('\x7d' :: rest) :=
      braces_lineBreak_append
    rw [object_append] at hshows ⊢
    exact .object hshows (.behind (fun _ => braces_name_append)
      (.append (finds_chars v) (.before (finds_charsFields fields) hend)))

theorem finds_charsItems {role : Role} : ∀ {level : Nat} (vs : List Json) {rest : Text},
    Finds layout (charsItems layout level vs ++ rest) rest (objectsOfItems role vs)
  | _, [], _ => .nothing fun _ => rfl
  | level, v :: vs, rest => by
    rw [items_append]
    exact .behind (fun _ => braces_lineBreak_append)
      ((finds_chars v).append (finds_charsItems vs))

theorem finds_charsFields : ∀ {level : Nat} (fs : List (String × Json)) {rest : Text},
    Finds layout (charsFields layout level fs ++ rest) rest (objectsOfFields fs)
  | _, [], _ => .nothing fun _ => rfl
  | level, (name, v) :: fs, rest => by
    rw [fields_append]
    exact .behind (fun _ => braces_name_append) ((finds_chars v).append (finds_charsFields fs))

end

end LiquidTemplate.Json
